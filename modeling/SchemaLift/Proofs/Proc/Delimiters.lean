import SchemaLift.Proc.Literal
import SchemaLift.Proofs.Block.OnLines
import SchemaLift.Proofs.Token.TopLevel

/-!
# The delimiters of a proc literal

A proc literal is an introduction and a block, and its body is the text between the delimiters of the
block (`parse_eq_ok_iff`). A brace has to be closed by the last token. A `do` needs an `end` as the last
token, whichever block that one closes: `parse_delimiters` says when it is the block of the proc.
-/

namespace SchemaLift

namespace ProcLiteral

/-! ## Parameters -/

/-- Where each item gives the text of a name, the items give the texts of the names among the tokens. -/
theorem names_of_itemized {f : List Token → Option Text}
    (hf : ∀ item p, f item = some p → ∃ t, item = [t] ∧ t.kind = .identifier ∧ p = t.text)
    {ts commas : List Token} {items : List (List Token)} (h : Token.Itemized ts commas items)
    {parameters : List Text} (hmap : (items.filter (!·.isEmpty)).mapM f = some parameters) :
    (∀ t ∈ ts, t.kind = .comma ∨ t.kind = .identifier) ∧
      parameters = (ts.filter (·.is .identifier)).map Token.text := by
  have hitem : ∀ {item rest parameters}, ((item :: rest).filter (!·.isEmpty)).mapM f = some parameters →
      ∃ others, (rest.filter (!·.isEmpty)).mapM f = some others ∧ (∀ t ∈ item, t.kind = .identifier) ∧
        parameters = item.map Token.text ++ others := by
    intro item rest parameters hmap
    by_cases hnil : item = []
    · subst hnil
      exact ⟨parameters, hmap, by simp, rfl⟩
    · rw [List.filter_cons_of_pos (by simpa using hnil), List.mapM_cons] at hmap
      obtain ⟨p, hp, hmap⟩ := Option.bind_eq_some_iff.1 hmap
      obtain ⟨others, hothers, hmap⟩ := Option.bind_eq_some_iff.1 hmap
      obtain rfl := Option.some.inj hmap
      obtain ⟨t, rfl, hk, rfl⟩ := hf item p hp
      exact ⟨others, hothers, by simp [hk], rfl⟩
  have hself : ∀ {item : List Token}, (∀ t ∈ item, t.kind = .identifier) →
      item.filter (·.is .identifier) = item := fun hall =>
    List.filter_eq_self.2 fun t ht => by simp [Token.is, hall t ht]
  induction h generalizing parameters with
  | last =>
    obtain ⟨others, hothers, hall, rfl⟩ := hitem hmap
    obtain rfl := Option.some.inj hothers
    exact ⟨fun t ht => .inr (hall t ht), by rw [hself hall]; exact List.append_nil _⟩
  | @cons item ts comma commas items _ hcomma _ ih =>
    obtain ⟨others, hothers, hall, rfl⟩ := hitem hmap
    obtain ⟨hkinds, rfl⟩ := ih hothers
    constructor
    · intro t ht
      rcases List.mem_append.1 ht with ht | ht
      · exact .inr (hall t ht)
      rcases List.mem_cons.1 ht with rfl | ht
      · exact .inl hcomma
      · exact hkinds t ht
    · have hskip : comma.is .identifier = false := by simp [Token.is, hcomma]
      rw [List.filter_append, hself hall, List.filter_cons_of_neg (by simp [hskip]), List.map_append]

/-- **Parameters are the names between commas**, and nothing else stands there. -/
theorem parameters?_spec {names : List Token} {parameters : List Text}
    (h : parameters? names = some parameters) :
    (∀ t ∈ names, t.kind = .comma ∨ t.kind = .identifier) ∧
      parameters = (names.filter (·.is .identifier)).map Token.text := by
  obtain ⟨items, hitems, hmap⟩ := Option.bind_eq_some_iff.1 h
  obtain ⟨found, hfound, rfl⟩ := Option.map_eq_some_iff.1 hitems
  obtain ⟨commas, hitemized⟩ := Token.segments_eq_some_iff.1 hfound
  refine names_of_itemized (fun item p hp => ?_) hitemized hmap
  split at hp
  · rename_i t
    split at hp
    · rename_i hk
      exact ⟨t, rfl, hk, (Option.some.inj hp).symm⟩
    · cases hp
  · cases hp

/-! ## Layouts -/

/-- What stands in front of the block of a proc, with the parameters named there: an arrow, an arrow with
parameters in brackets, `lambda` or `proc`, or `Proc.new`. -/
inductive Introduces : (front : List Token) → (named : List Text) → Prop
  | arrow {t : Token} (ht : t.kind = .arrow) : Introduces [t] []
  | arrowWith {t opening closing : Token} {names : List Token} {parameters : List Text}
      (ht : t.kind = .arrow) (hopening : opening.kind = .lparen)
      (hclosing : closing.kind.closesBracket = true) (h : parameters? names = some parameters) :
      Introduces (t :: opening :: (names ++ [closing])) parameters
  | word {t : Token} (ht : t.isWord "lambda" = true ∨ t.isWord "proc" = true) : Introduces [t] []
  | new {t dot new : Token} (ht : t.kind = .constant) (htext : t.text = "Proc".toList)
      (hdot : dot.kind = .dot) (hnew : new.isWord "new" = true) : Introduces [t, dot, new] []

/-- Where the parameters of a proc are named: in front of its block, or between pipes if there are none
in front. -/
inductive Named : (front : List Text) → (piped inner : List Token) → List Text → Prop
  | inFront {front : List Text} {inner : List Token}
      (h : (front.isEmpty && inner.head?.any (·.is .pipe)) = false) : Named front [] inner front
  | piped {bar bar' : Token} {names inner : List Token} {parameters : List Text}
      (hbar : bar.kind = .pipe) (hnames : ∀ t ∈ names, t.kind ≠ .pipe) (hbar' : bar'.kind = .pipe)
      (h : parameters? names = some parameters) :
      Named [] (bar :: (names ++ [bar'])) inner parameters

/-- How the tokens of a proc literal are laid out. -/
structure Layout (ts : List Token) (p : ProcLiteral) where
  /-- The tokens in front of the block. -/
  front : List Token
  /-- The parameters in front of the block. -/
  named : List Text
  opener : Token
  /-- The parameters between pipes, with the pipes. -/
  piped : List Token
  inner : List Token
  closer : Token
  tokens : ts = front ++ opener :: (piped ++ inner ++ [closer])
  introduces : Introduces front named
  opens : opener.kind = .lbrace ∨ opener.kind = .doWord
  parameters : Named named piped inner p.parameters
  body : p.body = bodyText inner closer

theorem closeIndex_parameters {names : List Token} {parameters : List Text} {closing : Token}
    (h : parameters? names = some parameters) (hclosing : closing.kind.closesBracket = true)
    (rest : List Token) :
    Token.closeIndex 0 (names ++ closing :: rest) = some names.length := by
  obtain ⟨items, hitems, -⟩ := Option.bind_eq_some_iff.1 h
  obtain ⟨found, hfound, -⟩ := Option.map_eq_some_iff.1 hitems
  obtain ⟨commas, hitemized⟩ := Token.segments_eq_some_iff.1 hfound
  have hopens : closing.kind.opensBracket = false := by
    cases hk : closing.kind <;> rw [hk] at hclosing <;> first | rfl | cases hclosing
  rw [hitemized.closeIndex_append, Token.closeIndex, hopens, hclosing]
  simp

theorem introduction_eq_some_iff {ts rest : List Token} {opener : Token} {named : List Text}
    (hopener : opener.kind = .lbrace ∨ opener.kind = .doWord) :
    introduction ts = some (named, opener :: rest) ↔
      ∃ front, ts = front ++ opener :: rest ∧ Introduces front named := by
  constructor
  · intro h
    unfold introduction at h
    split at h
    · cases h
    rename_i t ts
    split at h
    · rename_i harrow
      split at h
      · cases h
      rename_i u us
      split at h
      · rename_i hopening
        obtain ⟨n, hn, h⟩ := Option.bind_eq_some_iff.1 h
        obtain ⟨ps, hps, h⟩ := Option.bind_eq_some_iff.1 h
        obtain ⟨rfl, hblock⟩ := Prod.mk.inj (Option.some.inj h)
        obtain ⟨names, closing, after, rfl, rfl, hclosing⟩ := Token.exists_of_closeIndex hn
        have hdrop : (names ++ closing :: after).drop (names.length + 1) = after := by simp
        rw [List.take_left] at hps
        rw [hdrop] at hblock
        refine ⟨t :: u :: (names ++ [closing]), ?_, .arrowWith harrow hopening hclosing hps⟩
        simp [hblock]
      · obtain ⟨rfl, hblock⟩ := Prod.mk.inj (Option.some.inj h)
        exact ⟨[t], by rw [hblock]; rfl, .arrow harrow⟩
    split at h
    · rename_i hword
      obtain ⟨rfl, hblock⟩ := Prod.mk.inj (Option.some.inj h)
      exact ⟨[t], by rw [hblock]; rfl, .word (Bool.or_eq_true_iff.1 hword)⟩
    split at h
    · rename_i dot new us
      split at h
      · rename_i hnew
        obtain ⟨rfl, hblock⟩ := Prod.mk.inj (Option.some.inj h)
        exact ⟨[t, dot, new], by rw [hblock]; rfl, .new hnew.1 hnew.2.1 hnew.2.2.1 hnew.2.2.2⟩
      · cases h
    · cases h
  · rintro ⟨front, rfl, h⟩
    cases h with
    | arrow ht =>
      have hparen : opener.kind ≠ .lparen := by
        rcases hopener with hk | hk <;> rw [hk] <;> decide
      simp [introduction, ht, hparen]
    | arrowWith ht hopening hclosing hps =>
      have hclose := closeIndex_parameters hps hclosing (opener :: rest)
      simp [introduction, ht, hopening, hclose, hps]
    | @word t ht =>
      have hkind : t.kind = .identifier := by
        rcases ht with ht | ht <;> exact eq_of_beq (Bool.and_eq_true_iff.1 ht).1
      have hword : (t.isWord "lambda" || t.isWord "proc") = true := Bool.or_eq_true_iff.2 ht
      simp [introduction, hkind, hword]
    | @new t dot new ht htext hdot hnew =>
      have hword : ∀ name, t.isWord name = false := by simp [Token.isWord, ht]
      simp [introduction, ht, htext, hdot, hnew, hword]

/-- A brace is closed by the last token and by none before; behind a `do` the last token is an `end`. -/
theorem inside_eq_some_iff {block between : List Token} {closer : Token} :
    inside block = some (between, closer) ↔ ∃ opener, block = opener :: (between ++ [closer]) ∧
      ((opener.kind = .lbrace ∧ Token.closeIndex 0 (between ++ [closer]) = some between.length) ∨
        opener.kind = .doWord ∧ closer.kind = .endWord) := by
  cases block with
  | nil => simp [inside]
  | cons opener rest =>
    rw [inside]
    rcases List.eq_nil_or_concat' rest with rfl | ⟨init, last, rfl⟩
    · simp
    have hcloses : (if opener.kind = .lbrace then
          Token.closeIndex 0 (init ++ [last]) == some ((init ++ [last]).length - 1)
        else if opener.kind = .doWord then last.is .endWord else false) = true ↔
        (opener.kind = .lbrace ∧ Token.closeIndex 0 (init ++ [last]) = some init.length) ∨
          opener.kind = .doWord ∧ last.kind = .endWord := by
      by_cases hbrace : opener.kind = .lbrace
      · simp [hbrace]
      · by_cases hdo : opener.kind = .doWord <;> simp [hdo, hbrace, Token.is]
    simp only [List.getLast?_concat, hcloses, List.dropLast_concat]
    constructor
    · intro h
      split at h
      · rename_i hkinds
        obtain ⟨rfl, rfl⟩ := Prod.mk.inj (Option.some.inj h)
        exact ⟨opener, rfl, hkinds⟩
      · cases h
    · rintro ⟨opener', hblock, hkinds⟩
      obtain ⟨rfl, hrest⟩ := List.cons.inj hblock
      obtain ⟨rfl, hlast⟩ := List.append_inj' hrest rfl
      obtain rfl := List.singleton_inj.1 hlast
      rw [if_pos hkinds]

theorem pipedParameters_eq_some_iff {ts inner : List Token} {parameters : List Text} :
    pipedParameters ts = some (parameters, inner) ↔ ∃ names bar, ts = names ++ bar :: inner ∧
      (∀ t ∈ names, t.kind ≠ .pipe) ∧ bar.kind = .pipe ∧ parameters? names = some parameters := by
  have hpipe : ∀ t : Token, (!t.is .pipe) = true ↔ t.kind ≠ .pipe := by simp [Token.is]
  have hcut : ∀ names rest : List Token, (names ++ rest).drop names.length = rest := fun _ _ =>
    List.drop_left
  unfold pipedParameters
  constructor
  · intro h
    extract_lets names at h
    have hts : names ++ ts.dropWhile (!·.is .pipe) = ts := List.takeWhile_append_dropWhile
    rw [← hts, hcut] at h
    cases hdrop : ts.dropWhile (!·.is .pipe) with
    | nil =>
      rw [hdrop] at h
      cases h
    | cons bar rest =>
      rw [hdrop] at h hts
      obtain ⟨ps, hps, heq⟩ := Option.map_eq_some_iff.1 h
      obtain ⟨rfl, rfl⟩ := Prod.mk.inj heq
      have hbar := List.head?_dropWhile_not (!·.is .pipe) ts
      rw [hdrop] at hbar
      refine ⟨names, bar, hts.symm, fun t ht => ?_, ?_, hps⟩
      · have hmem : t ∈ ts.takeWhile fun t => !t.is .pipe := ht
        have hnot := List.mem_takeWhile_imp hmem
        exact (hpipe t).1 hnot
      · simpa [Token.is] using hbar
  · rintro ⟨names, bar, rfl, hnames, hbar, hps⟩
    have htake : (names ++ bar :: inner).takeWhile (!·.is .pipe) = names := by
      rw [List.takeWhile_append_of_pos fun t ht => (hpipe t).2 (hnames t ht),
        List.takeWhile_cons_of_neg (by simp [Token.is, hbar]), List.append_nil]
    simp only [htake, hcut, hps]
    rfl

/-- Pipes name the parameters if they stand at the head of the block and no parameters in front of it. -/
theorem exists_named_iff {named : List Text} {between : List Token} {closer : Token} {p : ProcLiteral} :
    ((if named.isEmpty && between.head?.any (·.is .pipe) then do
        let (parameters, inner) ← pipedParameters between.tail
        return ⟨parameters, bodyText inner closer⟩
      else return ⟨named, bodyText between closer⟩) : Option ProcLiteral) = some p ↔
    ∃ piped inner, between = piped ++ inner ∧ Named named piped inner p.parameters ∧
      p.body = bodyText inner closer := by
  rw [ite_eq_iff]
  constructor
  · rintro (⟨hpiped, h⟩ | ⟨hfront, h⟩)
    · obtain ⟨⟨parameters, inner⟩, hnames, h⟩ := Option.bind_eq_some_iff.1 h
      obtain ⟨names, bar', htail, hnot, hbar', hparameters⟩ := pipedParameters_eq_some_iff.1 hnames
      obtain rfl := Option.some.inj h
      rw [Bool.and_eq_true, List.isEmpty_iff] at hpiped
      obtain ⟨rfl, hhead⟩ := hpiped
      cases between with
      | nil => cases hhead
      | cons bar between =>
        have hbar : bar.kind = .pipe := by simpa [Token.is] using hhead
        refine ⟨bar :: (names ++ [bar']), inner, ?_, .piped hbar hnot hbar' hparameters, rfl⟩
        rw [show between = names ++ bar' :: inner from htail]
        simp
    · obtain rfl := Option.some.inj h
      exact ⟨[], between, rfl, .inFront (Bool.eq_false_iff.2 hfront), rfl⟩
  · obtain ⟨parameters, body⟩ := p
    rintro ⟨piped, inner, rfl, hnamed, rfl⟩
    cases hnamed with
    | inFront h => exact .inr ⟨Bool.eq_false_iff.1 h, rfl⟩
    | @piped bar bar' names _ _ hbar hnot hbar' hparameters =>
      have hnames : pipedParameters (names ++ bar' :: inner) = some (parameters, inner) :=
        pipedParameters_eq_some_iff.2 ⟨names, bar', rfl, hnot, hbar', hparameters⟩
      refine .inl ⟨by simp [Token.is, hbar], ?_⟩
      simp only [List.cons_append, List.append_assoc, List.nil_append, List.tail_cons, hnames]
      rfl

theorem Layout.introduction_eq {ts : List Token} {p : ProcLiteral} (l : Layout ts p) :
    introduction ts = some (l.named, l.opener :: (l.piped ++ l.inner ++ [l.closer])) :=
  (introduction_eq_some_iff l.opens).2 ⟨l.front, l.tokens, l.introduces⟩

/-- A proc literal is an introduction with a block that its last token closes: a brace by the count of
brackets, a `do` by any `end`. -/
theorem parse_eq_ok_iff {s : Text} {p : ProcLiteral} : parse s = .ok p ↔
    ∃ l : Layout (tokenizeCode s) p,
      (l.opener.kind = .lbrace ∧ Token.closeIndex 0 (l.piped ++ l.inner ++ [l.closer]) =
        some (l.piped ++ l.inner).length) ∨
      l.opener.kind = .doWord ∧ l.closer.kind = .endWord := by
  have hparse : parse s = .ok p ↔ ofTokens (tokenizeCode s) = some p := by
    unfold parse
    cases ofTokens (tokenizeCode s) <;> simp
  rw [hparse]
  constructor
  · intro h
    obtain ⟨⟨named, block⟩, hintroduced, hblock⟩ := Option.bind_eq_some_iff.1 h
    obtain ⟨⟨between, closer⟩, hinside, hbetween⟩ := Option.bind_eq_some_iff.1 hblock
    obtain ⟨opener, rfl, hkinds⟩ := inside_eq_some_iff.1 hinside
    have hopens := hkinds.imp And.left And.left
    obtain ⟨front, htokens, hfront⟩ := (introduction_eq_some_iff hopens).1 hintroduced
    obtain ⟨piped, inner, rfl, hnamed, hbody⟩ := exists_named_iff.1 hbetween
    exact ⟨⟨front, named, opener, piped, inner, closer, htokens, hfront, hopens, hnamed, hbody⟩, hkinds⟩
  · rintro ⟨l, hkinds⟩
    have hinside := inside_eq_some_iff.2 ⟨l.opener, rfl, hkinds⟩
    refine Option.bind_eq_some_iff.2 ⟨_, l.introduction_eq, Option.bind_eq_some_iff.2 ⟨_, hinside, ?_⟩⟩
    exact exists_named_iff.2 ⟨l.piped, l.inner, rfl, l.parameters, l.body⟩

namespace Layout

variable {ts : List Token} {p : ProcLiteral}

theorem named_unique {named : List Text} {piped piped' inner inner' : List Token}
    {parameters : List Text} (h : Named named piped inner parameters)
    (h' : Named named piped' inner' parameters) (heq : piped ++ inner = piped' ++ inner') :
    piped = piped' ∧ inner = inner' := by
  cases h with
  | inFront hfront =>
    cases h' with
    | inFront hfront' => exact ⟨rfl, heq⟩
    | piped hbar =>
      obtain rfl : inner = _ := heq
      simp [Token.is, hbar] at hfront
  | @piped bar bar₂ names _ _ hbar hnames hbar₂ hps =>
    cases h' with
    | inFront hfront' =>
      obtain rfl : _ = inner' := heq
      simp [Token.is, hbar] at hfront'
    | @piped bar' bar₂' names' _ _ hbar' hnames' hbar₂' hps' =>
      obtain ⟨rfl, htail⟩ := List.cons.inj heq
      have hfirst : pipedParameters (names ++ [bar₂] ++ inner) = some (parameters, inner) :=
        pipedParameters_eq_some_iff.2 ⟨names, bar₂, by simp, hnames, hbar₂, hps⟩
      have hsecond : pipedParameters (names' ++ [bar₂'] ++ inner') = some (parameters, inner') :=
        pipedParameters_eq_some_iff.2 ⟨names', bar₂', by simp, hnames', hbar₂', hps'⟩
      have htail : names ++ [bar₂] ++ inner = names' ++ [bar₂'] ++ inner' := htail
      -- both end at the first pipe
      obtain ⟨-, rfl⟩ : parameters = parameters ∧ inner' = inner := by
        rw [htail, hsecond] at hfirst
        exact Prod.mk.inj (Option.some.inj hfirst)
      exact ⟨congrArg (bar :: ·) (List.append_cancel_right htail), rfl⟩

/-- Tokens are laid out in one way only. -/
instance : Subsingleton (Layout ts p) where
  allEq := by
    rintro ⟨front, named, opener, piped, inner, closer, htokens, hfront, hopens, hnamed, hbody⟩
      ⟨front', named', opener', piped', inner', closer', htokens', hfront', hopens', hnamed', hbody'⟩
    have hintroduction := ((introduction_eq_some_iff hopens).2 ⟨front, htokens, hfront⟩).symm.trans
      ((introduction_eq_some_iff hopens').2 ⟨front', htokens', hfront'⟩)
    obtain ⟨rfl, hblock⟩ := Prod.mk.inj (Option.some.inj hintroduction)
    obtain ⟨rfl, hbetween⟩ := List.cons.inj hblock
    obtain ⟨hinner, hcloser⟩ := List.append_inj' hbetween rfl
    obtain rfl := List.singleton_inj.1 hcloser
    obtain ⟨rfl, rfl⟩ := named_unique hnamed hnamed' hinner
    obtain rfl := List.append_cancel_right (htokens.symm.trans htokens')
    rfl

/-- What each token behind the opener adds: behind a brace to the depth of brackets, behind a `do` to the
depth of blocks, as on the lines of the text. -/
def counts (l : Layout ts p) : List Int :=
  (if l.opener.kind = .lbrace then ts.map Token.bracketDelta
    else (BlockEvent.onLines none false ts).map fun e => e.elim 0 BlockEvent.delta).drop
      (l.front.length + 1)

/-- The last token closes what the opener opens, and no token before it does. -/
def ClosedByLast (l : Layout ts p) : Prop :=
  closesAt 0 l.counts = some (l.piped ++ l.inner).length

instance (l : Layout ts p) : Decidable l.ClosedByLast := inferInstanceAs (Decidable (_ = _))

theorem length_counts (l : Layout ts p) : l.counts.length = (l.piped ++ l.inner).length + 1 := by
  have hlength := congrArg List.length l.tokens
  simp only [List.length_append, List.length_cons, List.length_nil] at hlength
  rw [counts, List.length_drop, List.length_append]
  split
  · rw [List.length_map]
    omega
  · rw [List.length_map, BlockEvent.length_onLines]
    omega

/-- The last token closes the block if nothing between the delimiters brings the count below zero. -/
theorem closedByLast_iff (l : Layout ts p) : l.ClosedByLast ↔
    (∀ k ≤ (l.piped ++ l.inner).length, 0 ≤ (l.counts.take k).sum) ∧ l.counts.sum < 0 := by
  have hall : l.counts.take ((l.piped ++ l.inner).length + 1) = l.counts :=
    List.take_of_length_le l.length_counts.le
  rw [ClosedByLast, closesAt_eq_some_iff (Int.le_refl 0), hall]
  simp only [Int.zero_add]

/-- Behind a brace brackets are counted. -/
theorem closedByLast_brace (l : Layout ts p) (h : l.opener.kind = .lbrace) : l.ClosedByLast ↔
    Token.closeIndex 0 (l.piped ++ l.inner ++ [l.closer]) = some (l.piped ++ l.inner).length := by
  have hbehind : ts.drop (l.front.length + 1) = l.piped ++ l.inner ++ [l.closer] := by
    have hlength : l.front.length + 1 = (l.front ++ [l.opener]).length := by simp
    have hdrop := congrArg (List.drop (l.front.length + 1)) l.tokens
    rwa [List.append_cons, hlength, List.drop_left, ← hlength] at hdrop
  rw [ClosedByLast, counts, if_pos h, ← List.map_drop, hbehind, Token.closeIndex_eq]
  rfl

end Layout

/-- A proc literal is split into what stands in front of its block, the delimiters of the block, the body
between them, and what stands behind the last token. A brace is closed by that token and by none before it;
a `do` is exactly if no running count of blocks between the delimiters falls below zero and the last
token brings it there. -/
theorem parse_delimiters {s : Text} {p : ProcLiteral} (h : parse s = .ok p) :
    ∃ l : Layout (tokenizeCode s) p,
      (∃ rest, s = (l.front ++ l.opener :: l.piped).flatMap Token.full ++ p.body ++ l.closer.text ++ rest) ∧
      (l.opener.kind = .lbrace ∨ l.opener.kind = .doWord ∧ l.closer.kind = .endWord) ∧
      (l.ClosedByLast ↔ (l.opener.kind = .doWord →
        (∀ k ≤ (l.piped ++ l.inner).length, 0 ≤ (l.counts.take k).sum) ∧ l.counts.sum < 0)) := by
  obtain ⟨l, hkinds⟩ := parse_eq_ok_iff.1 h
  refine ⟨l, ?_, hkinds.imp_left And.left, ?_⟩
  · obtain ⟨rest, hrest⟩ := exists_flatMap_full s
    refine ⟨rest, ?_⟩
    conv_lhs => rw [hrest, l.tokens]
    simp [l.body, bodyText, Token.full]
  · rcases hkinds with ⟨hbrace, hcloses⟩ | ⟨hdo, -⟩
    · refine iff_of_true ((l.closedByLast_brace hbrace).2 hcloses) fun hdo => ?_
      rw [hbrace] at hdo
      cases hdo
    · rw [l.closedByLast_iff]
      exact ⟨fun h _ => h, fun h => h hdo⟩

theorem parse_delimiters_nested :
    let s := "->(o, a, c) do\n  o.all.each do |x|\n    x.save if x\n  end\nend # all".toList
    let p : ProcLiteral :=
      ⟨[['o'], ['a'], ['c']], "\n  o.all.each do |x|\n    x.save if x\n  end\n".toList⟩
    ∃ l : Layout (tokenizeCode s) p,
      (∃ rest, s = (l.front ++ l.opener :: l.piped).flatMap Token.full ++ p.body ++ l.closer.text ++ rest) ∧
      (l.opener.kind = .lbrace ∨ l.opener.kind = .doWord ∧ l.closer.kind = .endWord) ∧
      (l.ClosedByLast ↔ (l.opener.kind = .doWord →
        (∀ k ≤ (l.piped ++ l.inner).length, 0 ≤ (l.counts.take k).sum) ∧ l.counts.sum < 0)) := by
  intro s p
  have hparse : parse s = .ok p := by decide +kernel
  exact parse_delimiters hparse

/-- The block that the proc opens ends where a method is called on the proc, and the last token closes the
block of that call. -/
theorem parse_takes_call :
    let s := "->(o, a, c) do\n  o.x\nend.tap do |y|\n  y\nend".toList
    let p : ProcLiteral := ⟨[['o'], ['a'], ['c']], "\n  o.x\nend.tap do |y|\n  y\n".toList⟩
    parse s = .ok p ∧ ∀ l : Layout (tokenizeCode s) p,
      ¬l.ClosedByLast ∧ ∃ k ≤ (l.piped ++ l.inner).length, (l.counts.take k).sum < 0 := by
  intro s p
  have hparse : parse s = .ok p := by decide +kernel
  refine ⟨hparse, fun l => ?_⟩
  let names : List Token := [⟨[], .identifier, ['o']⟩, ⟨[], .comma, [',']⟩, ⟨[' '], .identifier, ['a']⟩,
    ⟨[], .comma, [',']⟩, ⟨[' '], .identifier, ['c']⟩]
  let arrow : Token := ⟨[], .arrow, "->".toList⟩
  let inner : List Token := [⟨"\n  ".toList, .identifier, ['o']⟩, ⟨[], .dot, ['.']⟩,
    ⟨[], .identifier, ['x']⟩, ⟨['\n'], .endWord, "end".toList⟩, ⟨[], .dot, ['.']⟩,
    ⟨[], .identifier, "tap".toList⟩, ⟨[' '], .doWord, "do".toList⟩, ⟨[' '], .pipe, ['|']⟩,
    ⟨[], .identifier, ['y']⟩, ⟨[], .pipe, ['|']⟩, ⟨"\n  ".toList, .identifier, ['y']⟩]
  let laid : Layout (tokenizeCode s) p :=
    { front := arrow :: ⟨[], .lparen, ['(']⟩ :: (names ++ [⟨[], .rparen, [')']⟩])
      named := p.parameters
      opener := ⟨[' '], .doWord, "do".toList⟩
      piped := []
      inner := inner
      closer := ⟨['\n'], .endWord, "end".toList⟩
      tokens := by decide +kernel
      introduces := .arrowWith rfl rfl rfl (by decide +kernel)
      opens := .inr rfl
      parameters := .inFront rfl
      body := by decide +kernel }
  obtain rfl : l = laid := Subsingleton.elim l laid
  have hcounts : laid.counts = [0, 0, 0, -1, 0, 0, 1, 0, 0, 0, 0, -1] := by decide +kernel
  have hfalls : (laid.counts.take 4).sum < 0 := by rw [hcounts]; decide
  have hlength : 4 ≤ (laid.piped ++ laid.inner).length := by decide
  refine ⟨fun hclosed => ?_, 4, hlength, hfalls⟩
  exact absurd (laid.closedByLast_iff.1 hclosed).1 fun hnonneg => absurd (hnonneg 4 hlength) (by omega)

end ProcLiteral

end SchemaLift
