import SchemaLift.Proofs.Token.Constant
import SchemaLift.Proofs.Token.Quoted

/-!
# What a token sees of the text behind it

A token looks one or two characters beyond its end. `Ahead r r'` says that a token which ends in front
of `r` cannot go on in `r'`; then it is found in front of `r'` as well (`head_ahead`). The text may be
cut off there (`Ahead.cut`), go on with a character that continues no token (`Ahead.stop`), or have
other words in the places of its words.
-/

namespace SchemaLift.Scan

/-- The characters that a token looks for behind itself, word characters apart. -/
def sought : List Char := [':', '.', '?', '!', '=', '>', '@', '"']

/-- A character that continues no token in front of it, comments and quoted texts apart. -/
def Stops (c : Char) : Prop := isWordChar c = false ∧ c ∉ sought

instance (c : Char) : Decidable (Stops c) :=
  inferInstanceAs (Decidable (isWordChar c = false ∧ c ∉ sought))

theorem stops_cons {c : Char} (h : Stops c) (rest : Text) : ∀ d ∈ (c :: rest).head?, Stops d := by
  intro d hd
  cases hd
  exact h

/-- White space continues no token. -/
theorem stops_of_isBlankChar {c : Char} (h : Text.isBlankChar c = true) : Stops c := by
  have hb := Text.isBlankChar_bounds h
  constructor
  · rw [Bool.eq_false_iff, Ne, isWordChar_iff_toNat]
    omega
  · intro hmem
    have hall : ∀ d ∈ sought, (!Text.isBlankChar d) = true := List.all_eq_true.1 (by decide)
    have hnot := hall c hmem
    rw [h] at hnot
    cases hnot

/-- Behind a token that ends in front of the first text, the second one continues it no further. -/
inductive Ahead : Text → Text → Prop
  | stop (r : Text) {r' : Text} (h : ∀ c ∈ r'.head?, Stops c) : Ahead r r'
  | keep (c : Char) {r r' : Text} (h : Ahead r r') : Ahead (c :: r) (c :: r')
  | quote (r r' : Text) : Ahead ('"' :: r) ('"' :: r')
  | word {c c' : Char} (hc : isWordStart c = true) (hu : c.isUpper = false) (hc' : c'.isLower = true)
      (r r' : Text) : Ahead (c :: r) (c' :: r')
  | key {c quote : Char} (hc : c ∉ [':', '.', '?', '!']) (hq : quote ∈ ['"', '\'', ':'])
      (r r' : Text) : Ahead (c :: quote :: r) (c :: ':' :: r')

namespace Ahead

variable {r r' : Text}

/-- A token ends in front of a text wherever it ends with the text cut off. -/
theorem cut (r : Text) : Ahead r [] := .stop r (by simp)

theorem refl : ∀ r : Text, Ahead r r
  | [] => .cut []
  | c :: r => .keep c (refl r)

theorem append (w : Text) (h : Ahead r r') : Ahead (w ++ r) (w ++ r') := by
  induction w with
  | nil => exact h
  | cons c w ih => exact .keep c ih

theorem isWordStart_of_isLower {c : Char} (h : c.isLower = true) : isWordStart c = true := by
  rw [isLower_iff_toNat] at h
  rw [isWordStart_iff_toNat]
  omega

theorem notMem_sought {c : Char} (h : isWordStart c = true) : c ∉ sought := by
  have hall : sought.all (fun d => !isWordStart d) = true := by decide
  intro hc
  have := List.all_eq_true.1 hall c hc
  simp [h] at this

/-- What a token looks for and finds in the second text, it finds in the first one. -/
theorem head?_of (h : Ahead r r') {x : Char} (hx : x ∈ sought) (hr : r'.head? = some x) :
    r.head? = some x := by
  cases h with
  | stop r h => exact absurd hx (h x hr).2
  | keep | quote | key => exact hr
  | word _ _ hc' =>
    cases hr
    exact absurd hx (notMem_sought (isWordStart_of_isLower hc'))

/-- A property of word characters that a word has at its start whenever a lower case letter has it. -/
structure Steady (p : Char → Bool) : Prop where
  isWordChar_of : ∀ c, p c = true → isWordChar c = true
  word : ∀ c c' : Char, isWordStart c = true → c.isUpper = false → c'.isLower = true →
    p c' = true → p c = true

theorem head?_any (h : Ahead r r') {p : Char → Bool} (hp : Steady p)
    (hr : r.head?.any p = false) : r'.head?.any p = false := by
  cases h with
  | stop r h =>
    rw [Option.any_eq_false]
    intro c hc
    have hword := (h c hc).1
    exact Bool.eq_false_iff.2 fun hpc => by simp [hp.isWordChar_of c hpc] at hword
  | keep | quote | key => exact hr
  | @word c c' hc hu hc' r r' =>
    rw [List.head?_cons, Option.any_some, Bool.eq_false_iff] at hr ⊢
    exact fun hd => hr (hp.word c c' hc hu hc' hd)

theorem steady_isWordChar : Steady isWordChar :=
  ⟨fun _ h => h, fun _ _ hc _ _ _ => isWordChar_of_isWordStart hc⟩

theorem steady_isWordStart : Steady isWordStart :=
  ⟨fun _ => isWordChar_of_isWordStart, fun _ _ hc _ _ _ => hc⟩

theorem steady_isDigit : Steady Char.isDigit where
  isWordChar_of _ := isWordChar_of_isDigit
  word c c' _ _ hc' hd := by
    rw [isLower_iff_toNat] at hc'
    rw [isDigit_iff_toNat] at hd
    omega

theorem steady_digits : Steady fun c => c.isDigit || c == '_' where
  isWordChar_of c h := by
    rcases Bool.or_eq_true_iff.1 h with hd | hd
    · exact isWordChar_of_isDigit hd
    · rw [beq_iff_eq.1 hd]
      rfl
  word c c' hc hu hc' hd := by
    rcases Bool.or_eq_true_iff.1 hd with hd | hd
    · exact Bool.or_eq_true_iff.2 (.inl (steady_isDigit.word c c' hc hu hc' hd))
    · rw [beq_iff_eq.1 hd] at hc'
      exact absurd hc' (by decide)

theorem head?_isUpper (h : Ahead r r') (hr : r'.head?.any Char.isUpper = true) :
    r.head?.any Char.isUpper = true := by
  obtain ⟨c, hc, hu⟩ := (Option.any_eq_true _ _).1 hr
  cases h with
  | stop r h =>
    have hword := (h c hc).1
    rw [Bool.eq_false_iff, Ne, isWordChar_iff_toNat] at hword
    rw [isUpper_iff_toNat] at hu
    omega
  | keep | quote | key => exact hr
  | word _ _ hc' =>
    cases hc
    rw [isLower_iff_toNat] at hc'
    rw [isUpper_iff_toNat] at hu
    omega

/-- Behind a colon, a dot or a mark the texts are still ahead. -/
theorem tail (h : Ahead r r') {x : Char} (hx : x ∈ [':', '.', '?', '!']) (hr : r'.head? = some x) :
    Ahead r.tail r'.tail := by
  have hsought : x ∈ sought := List.mem_append_left ['=', '>', '@', '"'] hx
  cases h with
  | stop r h => exact absurd hsought (h x hr).2
  | keep c h => exact h
  | quote => cases hr; exact absurd hx (by decide)
  | word _ _ hc' => cases hr; exact absurd hsought (notMem_sought (isWordStart_of_isLower hc'))
  | key hc => cases hr; exact absurd hx hc

theorem tail_of_mark (h : Ahead r r') (hr : r'.head? = some '?' ∨ r'.head? = some '!') :
    Ahead r.tail r'.tail := by
  rcases hr with hr | hr
  · exact h.tail (by simp) hr
  · exact h.tail (by simp) hr

/-- Behind an at sign, no word starts in the second text that does not in the first one. -/
theorem tail_at (h : Ahead r r') (hr : r'.head? = some '@')
    (hs : r.tail.head?.any isWordStart = false) : r'.tail.head?.any isWordStart = false := by
  cases h with
  | stop r h => exact absurd (h '@' hr) (by decide)
  | keep c h => exact h.head?_any steady_isWordStart hs
  | quote => cases hr
  | word _ _ hc' => cases hr; exact absurd hc' (by decide)
  | key => rfl

theorem take_append (w : Text) {n : Nat} (hn : n ≤ w.length) (r r' : Text) :
    (w ++ r').take n = (w ++ r).take n := by
  rw [List.take_append_of_le_length hn, List.take_append_of_le_length hn]

theorem drop_append (h : Ahead r r') {w : Text} {n : Nat} (hn : n ≤ w.length) :
    Ahead ((w ++ r).drop n) ((w ++ r').drop n) := by
  rw [List.drop_append_of_le_length hn, List.drop_append_of_le_length hn]
  exact h.append _

/-- Inside the text in front of them there is no difference. -/
theorem head?_drop_append {w : Text} {n : Nat} (hn : n < w.length) (r r' : Text) :
    ((w ++ r').drop n).head? = ((w ++ r).drop n).head? := by
  rw [List.head?_drop, List.head?_drop, List.getElem?_append_left hn, List.getElem?_append_left hn]

/-- A character that belongs to the token if it is found there is found in both texts or in none. -/
theorem head?_drop_iff (h : Ahead r r') {w : Text} {n : Nat} (hn : n ≤ w.length) {x : Char}
    (hx : x ∈ sought) (hin : ((w ++ r).drop n).head? = some x → n < w.length) :
    ((w ++ r').drop n).head? = some x ↔ ((w ++ r).drop n).head? = some x := by
  refine ⟨(h.drop_append hn).head?_of hx, fun hr => ?_⟩
  rwa [head?_drop_append (hin hr) r r']

end Ahead

/-! ## What each token looks at -/

/-- A `::` and a word in upper case. -/
def OpensConstant (s : Text) : Prop :=
  s.head? = some ':' ∧ s.tail.head? = some ':' ∧ s.tail.tail.head?.any Char.isUpper = true

instance (s : Text) : Decidable (OpensConstant s) :=
  inferInstanceAs (Decidable (s.head? = some ':' ∧ s.tail.head? = some ':' ∧
    s.tail.tail.head?.any Char.isUpper = true))

theorem constantTail_eq (s : Text) : constantTail s =
    if s.head?.any isWordChar then constantTail s.tail + 1
    else if OpensConstant s then constantTail (s.drop 3) + 3 else 0 := by
  match s with
  | [] => rfl
  | ':' :: ':' :: c :: cs =>
    have hcolon : isWordChar ':' = false := by decide
    simp [constantTail, OpensConstant, hcolon]
  | [c] => simp [constantTail, OpensConstant]
  | [c, d] => simp [constantTail, OpensConstant]
  | c :: d :: e :: cs =>
    by_cases hcd : c = ':' ∧ d = ':'
    · obtain ⟨rfl, rfl⟩ := hcd
      have hcolon : isWordChar ':' = false := by decide
      simp [constantTail, OpensConstant, hcolon]
    · rw [constantTail]
      · have hnot : ¬OpensConstant (c :: d :: e :: cs) := fun h =>
          hcd ⟨Option.some.inj h.1, Option.some.inj h.2.1⟩
        rw [if_neg hnot]
        rfl
      · intro _ _ hc heq
        exact hcd ⟨hc, (List.cons.inj heq).1⟩

theorem head?_ne {x : Char} {s : Text} (h : ∀ tail, s = x :: tail → False) :
    s.head? ≠ some x := by
  intro hs
  obtain ⟨tail, htail⟩ := List.head?_eq_some_iff.1 hs
  exact h tail htail

theorem word_eq (c : Char) (cs : Text) : word c cs =
    let n := run isWordChar cs
    let rest := cs.drop n
    if c.isUpper ∧ n < constantTail cs then (.constant, constantTail cs)
    else if rest.head? = some ':' then (.label, n + 1)
    else if (rest.head? = some '?' ∨ rest.head? = some '!') ∧ rest.tail.head? = some ':' then
      (.label, n + 2)
    else if c.isUpper then (.constant, n)
    else if rest.head? = some '?' ∨ rest.head? = some '!' then (.identifier, n + 1)
    else (plainKind (c :: cs.take n), n) := by
  unfold word plainKind
  extract_lets n path rest
  by_cases hc : c.isUpper = true ∧ n < path
  · rw [if_pos hc, if_pos (by simpa using hc)]
  rw [if_neg hc, if_neg (by simpa using hc), show cs.drop n = rest from rfl]
  generalize rest = rest
  split
  · rfl
  · rfl
  · rfl
  · rename_i hcolon hquestion hbang
    have hmark : ¬((rest.head? = some '?' ∨ rest.head? = some '!') ∧
        rest.tail.head? = some ':') := by
      rintro ⟨hhead | hhead, htail⟩ <;>
      · obtain ⟨tail, rfl⟩ := List.head?_eq_some_iff.1 hhead
        obtain ⟨tail, htail⟩ := List.head?_eq_some_iff.1 htail
        cases htail
        simp_all
    rw [if_neg (head?_ne hcolon), if_neg hmark]
    split
    · rfl
    split
    · rfl
    · rfl
    · rename_i hquestion hbang
      rw [if_neg (not_or.2 ⟨head?_ne hquestion, head?_ne hbang⟩)]
      split_ifs <;> rfl

theorem number_eq (cs : Text) : number cs =
    let n := run (fun c => c.isDigit || c == '_') cs
    let fraction := run Char.isDigit (cs.drop n).tail
    if (cs.drop n).head? = some '.' ∧ fraction ≠ 0 then n + 1 + fraction else n := by
  unfold number
  extract_lets n fraction
  have hfraction : fraction = run Char.isDigit (cs.drop n).tail := rfl
  generalize fraction = fraction at hfraction ⊢
  generalize cs.drop n = rest at hfraction ⊢
  split
  · rw [hfraction, List.head?_cons, List.tail_cons]
    split_ifs <;> simp_all
  · rename_i hdot
    rw [if_neg fun h => head?_ne (fun tail => hdot tail) h.1]

theorem afterAt_eq (cs : Text) : afterAt cs =
    if cs.head? = some '@' then
      if cs.tail.head?.any isWordStart then (some .instanceVariable, run isWordChar cs.tail.tail + 2)
      else (none, 0)
    else if cs.head?.any isWordStart then (some .instanceVariable, run isWordChar cs.tail + 1)
    else (none, 0) := by
  have hat : isWordStart '@' = false := by decide
  unfold afterAt
  split
  · rfl
  · rename_i c cs hc
    by_cases h : c = '@'
    · have hnil : cs = [] := by
        cases cs with
        | nil => rfl
        | cons d ds => exact (hc d ds h rfl).elim
      simp [h, hnil, hat]
    · rw [List.head?_cons, if_neg fun heq => h (Option.some.inj heq)]
      rfl
  · rfl

theorem afterColon_eq (cs : Text) : afterColon cs =
    if cs.head? = some ':' then (some .scope, 1)
    else if cs.head? = some '"' then
      match Quoted.plainExtent '"' cs.tail with
      | .closed n => (some .symbol, n + 1)
      | .unclosed n => (none, n + 1)
    else if cs.head?.any isWordStart then
      let n := run isWordChar cs.tail
      let mark := (cs.tail.drop n).head?
      if mark = some '?' ∨ mark = some '!' ∨ mark = some '=' then (some .symbol, n + 2)
      else (some .symbol, n + 1)
    else (some .colon, 0) := by
  unfold afterColon
  split
  · rfl
  · rfl
  · rename_i c cs hcolon hquote
    rw [List.head?_cons, if_neg fun h => hcolon (Option.some.inj h),
      if_neg fun h => hquote (Option.some.inj h), List.tail_cons, Option.any_some]
    split
    · extract_lets n mark
      split
      · rename_i h
        have hmark : mark = some '?' := congrArg List.head? h
        rw [if_pos (.inl hmark)]
      · rename_i h
        have hmark : mark = some '!' := congrArg List.head? h
        rw [if_pos (.inr (.inl hmark))]
      · rename_i h
        have hmark : mark = some '=' := congrArg List.head? h
        rw [if_pos (.inr (.inr hmark))]
      · rename_i hquestion hbang hequals
        rw [if_neg]
        rintro (h | h | h)
        exacts [head?_ne hquestion h, head?_ne hbang h, head?_ne hequals h]
    · rfl
  · rfl

/-! ## Runs -/

theorem run_eq_zero {p : Char → Bool} {s : Text} : run p s = 0 ↔ s.head?.any p = false := by
  cases s with
  | nil => exact iff_of_true rfl rfl
  | cons c cs =>
    cases hc : p c <;> simp [run, hc]

/-- A run that ends in front of one text ends in front of another that does not continue it. -/
theorem run_congr {p : Char → Bool} {r r' : Text} (hzero : run p r = 0 → run p r' = 0) {w : Text}
    (hw : run p (w ++ r) ≤ w.length) : run p (w ++ r') = run p (w ++ r) := by
  induction w with
  | nil =>
    have hrun : run p r = 0 := Nat.le_zero.1 hw
    exact (hzero hrun).trans hrun.symm
  | cons c w ih =>
    by_cases hc : p c = true
    · have hcons : ∀ s, run p (c :: s) = run p s + 1 := fun s => by simp [run, hc]
      rw [List.cons_append, hcons] at hw
      rw [List.cons_append, List.cons_append, hcons, hcons, ih (Nat.le_of_succ_le_succ hw)]
    · simp [run, hc]

section

variable {r r' : Text} (h : Ahead r r')
include h

theorem run_ahead {p : Char → Bool} (hp : Ahead.Steady p) {w : Text}
    (hw : run p (w ++ r) ≤ w.length) : run p (w ++ r') = run p (w ++ r) :=
  run_congr (fun hzero => run_eq_zero.2 (h.head?_any hp (run_eq_zero.1 hzero))) hw

theorem opensConstant_ahead (ho : OpensConstant r') : OpensConstant r := by
  obtain ⟨hfirst, hsecond, hupper⟩ := ho
  have htail := h.tail (by simp) hfirst
  have htail' := htail.tail (by simp) hsecond
  exact ⟨h.head?_of (by simp [sought]) hfirst, htail.head?_of (by simp [sought]) hsecond,
    htail'.head?_isUpper hupper⟩

theorem constantTail_ahead {w : Text} (hw : constantTail (w ++ r) ≤ w.length) :
    constantTail (w ++ r') = constantTail (w ++ r) := by
  induction hn : w.length using Nat.strongRecOn generalizing w with
  | _ n ih =>
    have hahead := h.append w
    rw [constantTail_eq (w ++ r), constantTail_eq (w ++ r')]
    rw [constantTail_eq (w ++ r)] at hw
    by_cases hword : (w ++ r).head?.any isWordChar = true
    · rw [if_pos hword] at hw ⊢
      match w with
      | [] => exact absurd hw (Nat.not_succ_le_zero _)
      | c :: w =>
        rw [if_pos (by simpa using hword)]
        exact congrArg (· + 1) (ih w.length (by simp [← hn]) (Nat.le_of_succ_le_succ hw) rfl)
    have hword' : ¬(w ++ r').head?.any isWordChar = true := by
      rw [Bool.not_eq_true] at hword ⊢
      exact hahead.head?_any Ahead.steady_isWordChar hword
    rw [if_neg hword] at hw ⊢
    rw [if_neg hword']
    by_cases hopens : OpensConstant (w ++ r)
    · rw [if_pos hopens] at hw ⊢
      match w with
      | [] | [_] | [_, _] => simp at hw
      | _ :: _ :: _ :: w =>
        have hopens' : OpensConstant (_ :: _ :: _ :: w ++ r') := hopens
        rw [if_pos hopens']
        exact congrArg (· + 3) (ih w.length (by simp [← hn]; omega)
          (Nat.le_of_succ_le_succ (Nat.le_of_succ_le_succ (Nat.le_of_succ_le_succ hw))) rfl)
    · rw [if_neg hopens, if_neg (mt (opensConstant_ahead hahead) hopens)]

theorem word_ahead {c : Char} {w : Text} (hw : (word c (w ++ r)).2 ≤ w.length) :
    word c (w ++ r') = word c (w ++ r) := by
  have hn : run isWordChar (w ++ r) ≤ w.length := by
    refine le_trans ?_ hw
    rw [word_eq]
    extract_lets n rest
    split_ifs with h₁ <;> simp only <;> omega
  have htail : c.isUpper = true → constantTail (w ++ r') = constantTail (w ++ r) := by
    intro hc
    refine constantTail_ahead h ?_
    by_cases hlt : run isWordChar (w ++ r) < constantTail (w ++ r)
    · rw [word_eq, if_pos ⟨hc, hlt⟩] at hw
      exact hw
    · omega
  have hrun := run_ahead h Ahead.steady_isWordChar hn
  have hrest := h.drop_append hn
  rw [word_eq] at hw
  rw [word_eq, word_eq, hrun]
  simp only [Ahead.take_append w hn r r'] at hw ⊢
  have hpath : (c.isUpper = true ∧ run isWordChar (w ++ r) < constantTail (w ++ r')) ↔
      (c.isUpper = true ∧ run isWordChar (w ++ r) < constantTail (w ++ r)) :=
    and_congr_right fun hc => by rw [htail hc]
  by_cases hconstant : c.isUpper = true ∧ run isWordChar (w ++ r) < constantTail (w ++ r)
  · rw [if_pos hconstant, if_pos (hpath.2 hconstant), htail hconstant.1]
  rw [if_neg hconstant] at hw ⊢
  rw [if_neg (mt hpath.1 hconstant)]
  -- a colon is part of the label
  have hcolon := h.head?_drop_iff hn (x := ':') (by simp [sought]) fun hr => by
    rw [if_pos hr] at hw
    exact hw
  by_cases hlabel : ((w ++ r).drop (run isWordChar (w ++ r))).head? = some ':'
  · rw [if_pos hlabel, if_pos (hcolon.2 hlabel)]
  rw [if_neg hlabel] at hw ⊢
  rw [if_neg (mt hcolon.1 hlabel)]
  -- so are a mark and a colon
  have hmark_of : ((w ++ r').drop (run isWordChar (w ++ r))).head? = some '?' ∨
      ((w ++ r').drop (run isWordChar (w ++ r))).head? = some '!' →
      ((w ++ r).drop (run isWordChar (w ++ r))).head? = some '?' ∨
        ((w ++ r).drop (run isWordChar (w ++ r))).head? = some '!' :=
    Or.imp (hrest.head?_of (by simp [sought])) (hrest.head?_of (by simp [sought]))
  by_cases hmarked : (((w ++ r).drop (run isWordChar (w ++ r))).head? = some '?' ∨
      ((w ++ r).drop (run isWordChar (w ++ r))).head? = some '!') ∧
        ((w ++ r).drop (run isWordChar (w ++ r))).tail.head? = some ':'
  · rw [if_pos hmarked] at hw ⊢
    simp only at hw
    rw [if_pos]
    rwa [List.tail_drop, Ahead.head?_drop_append (by omega) r r',
      Ahead.head?_drop_append (by omega) r r', ← List.tail_drop]
  rw [if_neg hmarked] at hw ⊢
  rw [if_neg fun ⟨hm, hc⟩ =>
    hmarked ⟨hmark_of hm, (hrest.tail_of_mark hm).head?_of (by simp [sought]) hc⟩]
  by_cases hupper : c.isUpper = true
  · rw [if_pos hupper, if_pos hupper]
  rw [if_neg hupper] at hw ⊢
  rw [if_neg hupper]
  by_cases hmark : ((w ++ r).drop (run isWordChar (w ++ r))).head? = some '?' ∨
      ((w ++ r).drop (run isWordChar (w ++ r))).head? = some '!'
  · rw [if_pos hmark] at hw ⊢
    rw [if_pos]
    rwa [Ahead.head?_drop_append hw r r']
  · rw [if_neg hmark, if_neg (mt hmark_of hmark)]

theorem number_ahead {w : Text} (hw : number (w ++ r) ≤ w.length) :
    number (w ++ r') = number (w ++ r) := by
  rw [number_eq] at hw ⊢
  rw [number_eq]
  extract_lets n fraction at hw
  have hn : n ≤ w.length := by
    refine le_trans ?_ hw
    split_ifs <;> omega
  have hrun : run (fun c => c.isDigit || c == '_') (w ++ r') = n :=
    run_ahead h Ahead.steady_digits hn
  have hrest := h.drop_append hn
  simp only [hrun]
  by_cases hpoint : ((w ++ r).drop n).head? = some '.' ∧ fraction ≠ 0
  · rw [if_pos hpoint] at hw
    have hlt : n + 1 ≤ w.length := by omega
    have hfraction : run Char.isDigit ((w ++ r').drop n).tail = fraction := by
      simp only [fraction, List.tail_drop, List.drop_append_of_le_length hlt] at hw ⊢
      refine run_ahead h Ahead.steady_isDigit ?_
      rw [List.length_drop]
      omega
    rw [hfraction, Ahead.head?_drop_append hlt r r']
  · rw [if_neg hpoint]
    refine if_neg fun ⟨hdot, hne⟩ => hpoint ⟨hrest.head?_of (by simp [sought]) hdot, fun hzero => hne ?_⟩
    exact run_eq_zero.2 ((hrest.tail (by simp) hdot).head?_any Ahead.steady_isDigit
      (run_eq_zero.1 hzero))

end

/-- The number of characters that a quoted text takes. -/
def extentSize : Quoted.Extent → Nat
  | .closed n | .unclosed n => n

theorem extentSize_add (k : Nat) (e : Quoted.Extent) : extentSize (e.add k) = extentSize e + k := by
  cases e <;> rfl

theorem plainExtent_escape {d : Char} (hd : d ≠ '\n') (quote : Char) (cs : Text) :
    Quoted.plainExtent quote ('\\' :: d :: cs) = (Quoted.plainExtent quote cs).add 2 := by
  rw [Quoted.plainExtent]
  exact fun h => hd h

theorem plainExtent_cons {c : Char} (hc : c ≠ '\\') (quote : Char) (cs : Text) :
    Quoted.plainExtent quote (c :: cs) =
      if c = quote then .closed 1 else (Quoted.plainExtent quote cs).add 1 := by
  rw [Quoted.plainExtent]
  · exact fun h => absurd h hc
  · exact fun _ h => absurd h hc
  · exact fun _ _ h => absurd h hc

theorem extentSize_pos (quote c : Char) (cs : Text) :
    0 < extentSize (Quoted.plainExtent quote (c :: cs)) := by
  by_cases hc : c = '\\'
  · subst hc
    cases cs with
    | nil => exact Nat.one_pos
    | cons d cs =>
      by_cases hd : d = '\n'
      · subst hd
        exact Nat.one_pos
      · rw [plainExtent_escape hd, extentSize_add]
        omega
  · rw [plainExtent_cons hc]
    split
    · exact Nat.one_pos
    · rw [extentSize_add]
      omega

/-- Where a string ends depends on the text up to there. -/
theorem stringClose_append {w r : Text} {n : Nat} (h : Quoted.stringClose (w ++ r) = some n)
    (hn : n + 1 ≤ w.length) (r' : Text) : Quoted.stringClose (w ++ r') = some n := by
  have hopen : Quoted.Open [.string] := .outerString
  rw [Quoted.stringClose, Quoted.Scanner.closing_eq hopen] at h ⊢
  obtain ⟨u, c, v, heq, rfl, hu, hc⟩ := Quoted.Scanner.exists_of_closeFrom hopen.ne_nil h
  have hprefix : u ++ [c] <+: w ++ r := ⟨v, by rw [heq, List.append_assoc, List.singleton_append]⟩
  have hprefix : u ++ [c] <+: w :=
    List.prefix_of_prefix_length_le hprefix (List.prefix_append w r) (by simpa using hn)
  obtain ⟨v', rfl⟩ := hprefix
  rw [List.append_assoc, List.append_assoc, List.singleton_append]
  exact Quoted.Scanner.closeFrom_of_step hu hc _

/-! ## Comments and quoted texts -/

/-- Nothing more stands on the line. -/
def EndsLine (r : Text) : Prop := r = [] ∨ r.head? = some '\n'

theorem run_line_eq_zero {r : Text} : run (· != '\n') r = 0 ↔ EndsLine r := by
  cases r <;> simp [run_eq_zero, EndsLine]

/-- A backslash at the end keeps the line end after it from the text, and nothing else. -/
theorem plainExtent_congr {r r' : Text} {quote : Char} {w : Text}
    (hw : extentSize (Quoted.plainExtent quote (w ++ r)) ≤ w.length)
    (hopen : ∀ n, Quoted.plainExtent quote (w ++ r) = .unclosed n →
      (r = [] → r' = []) ∧ (EndsLine r → EndsLine r')) :
    Quoted.plainExtent quote (w ++ r') = Quoted.plainExtent quote (w ++ r) := by
  induction hn : w.length using Nat.strongRecOn generalizing w with
  | _ n ih =>
    match w with
    | [] =>
      cases r with
      | nil => rw [(hopen 0 rfl).1 rfl]
      | cons c cs => exact absurd hw (Nat.not_le.2 (extentSize_pos quote c cs))
    | c :: w =>
      by_cases hc : c = '\\'
      · subst hc
        match w with
        | [] =>
          cases r with
          | nil => rw [(hopen 1 rfl).1 rfl]
          | cons d cs =>
            by_cases hd : d = '\n'
            · subst hd
              rcases (hopen 1 rfl).2 (.inr rfl) with rfl | hr'
              · rfl
              · obtain ⟨cs', rfl⟩ := List.head?_eq_some_iff.1 hr'
                rfl
            · rw [List.singleton_append, plainExtent_escape hd, extentSize_add] at hw
              exact absurd hw (by simp)
        | d :: w =>
          by_cases hd : d = '\n'
          · rw [hd]
            rfl
          · simp only [List.cons_append, plainExtent_escape hd, extentSize_add] at hw hopen ⊢
            have hlt : w.length < n := by
              rw [← hn, List.length_cons, List.length_cons]
              omega
            rw [ih w.length hlt (Nat.le_of_add_le_add_right hw)
              (fun m hm => hopen (m + 2) (by rw [hm]; rfl)) rfl]
      · simp only [List.cons_append, plainExtent_cons hc] at hw hopen ⊢
        by_cases hq : c = quote
        · rw [if_pos hq, if_pos hq]
        · simp only [if_neg hq, extentSize_add] at hw hopen ⊢
          rw [ih w.length (by simp [← hn]) (Nat.le_of_add_le_add_right hw)
            (fun m hm => hopen (m + 1) (by rw [hm]; rfl)) rfl]

section

variable {r r' : Text} (h : Ahead r r')
include h

theorem afterAt_ahead {w : Text} (hw : (afterAt (w ++ r)).2 ≤ w.length) :
    afterAt (w ++ r') = afterAt (w ++ r) := by
  have hahead := h.append w
  rw [afterAt_eq] at hw ⊢
  rw [afterAt_eq]
  by_cases hat : (w ++ r).head? = some '@'
  · rw [if_pos hat] at hw ⊢
    cases hword : (w ++ r).tail.head?.any isWordStart with
    | false =>
      rw [if_neg Bool.false_ne_true]
      by_cases hat' : (w ++ r').head? = some '@'
      · rw [if_pos hat', hahead.tail_at hat' hword, if_neg Bool.false_ne_true]
      · have hfirst : (w ++ r).head?.any isWordStart = false := by rw [hat]; rfl
        rw [if_neg hat', hahead.head?_any Ahead.steady_isWordStart hfirst, if_neg Bool.false_ne_true]
    | true =>
      rw [hword, if_pos rfl] at hw
      match w with
      | [] | [_] => exact absurd hw (by simp)
      | a :: b :: w =>
        have hrun : run isWordChar (w ++ r') = run isWordChar (w ++ r) :=
          run_ahead h Ahead.steady_isWordChar (by simpa using hw)
        have hat' : (a :: b :: w ++ r').head? = some '@' := hat
        have hword' : (a :: b :: w ++ r').tail.head?.any isWordStart = true := hword
        rw [if_pos hat', if_pos hword', if_pos rfl]
        exact congrArg (fun n => (some TokenKind.instanceVariable, n + 2)) hrun
  · have hat' := mt (hahead.head?_of (by simp [sought])) hat
    rw [if_neg hat] at hw ⊢
    rw [if_neg hat']
    cases hword : (w ++ r).head?.any isWordStart with
    | false =>
      rw [hahead.head?_any Ahead.steady_isWordStart hword, if_neg Bool.false_ne_true,
        if_neg Bool.false_ne_true]
    | true =>
      rw [hword, if_pos rfl] at hw
      match w with
      | [] => exact absurd hw (by simp)
      | a :: w =>
        have hrun : run isWordChar (w ++ r') = run isWordChar (w ++ r) :=
          run_ahead h Ahead.steady_isWordChar (by simpa using hw)
        have hword' : (a :: w ++ r').head?.any isWordStart = true := hword
        rw [if_pos hword', if_pos rfl]
        exact congrArg (fun n => (some TokenKind.instanceVariable, n + 1)) hrun

theorem afterColon_ahead {w : Text} (hw : (afterColon (w ++ r)).2 ≤ w.length)
    (hopen : (afterColon (w ++ r)).1 = none → (r = [] → r' = []) ∧ (EndsLine r → EndsLine r')) :
    afterColon (w ++ r') = afterColon (w ++ r) := by
  have hahead := h.append w
  rw [afterColon_eq] at hw hopen ⊢
  rw [afterColon_eq]
  have hcolon := h.head?_drop_iff (w := w) (n := 0) (Nat.zero_le _) (x := ':') (by simp [sought])
    fun hr => by
      rw [List.drop_zero] at hr
      rw [if_pos hr] at hw
      exact hw
  rw [List.drop_zero, List.drop_zero] at hcolon
  by_cases hc : (w ++ r).head? = some ':'
  · rw [if_pos hc, if_pos (hcolon.2 hc)]
  rw [if_neg hc] at hw hopen ⊢
  rw [if_neg (mt hcolon.1 hc)]
  by_cases hq : (w ++ r).head? = some '"'
  · rw [if_pos hq] at hw hopen ⊢
    have hextent : extentSize (Quoted.plainExtent '"' (w ++ r).tail) + 1 ≤ w.length := by
      refine le_trans (Nat.le_of_eq ?_) hw
      cases Quoted.plainExtent '"' (w ++ r).tail <;> rfl
    match w with
    | [] => exact absurd hextent (by simp)
    | a :: w =>
      have hq' : (a :: w ++ r').head? = some '"' := hq
      have heq : Quoted.plainExtent '"' (w ++ r') = Quoted.plainExtent '"' (w ++ r) := by
        refine plainExtent_congr (Nat.le_of_succ_le_succ hextent) fun n hn => hopen ?_
        rw [List.cons_append, List.tail_cons, hn]
      rw [if_pos hq']
      simp only [List.cons_append, List.tail_cons, heq]
  rw [if_neg hq] at hw ⊢
  rw [if_neg (mt (hahead.head?_of (by simp [sought])) hq)]
  cases hword : (w ++ r).head?.any isWordStart with
  | false =>
    rw [hahead.head?_any Ahead.steady_isWordStart hword, if_neg Bool.false_ne_true,
      if_neg Bool.false_ne_true]
  | true =>
    rw [hword, if_pos rfl] at hw
    have hn : run isWordChar (w ++ r).tail + 1 ≤ w.length := by
      refine le_trans ?_ hw
      extract_lets n mark
      split_ifs <;> simp [n]
    match w with
    | [] => exact absurd hn (by simp)
    | a :: w =>
      have hn : run isWordChar (w ++ r) ≤ w.length := Nat.le_of_succ_le_succ hn
      have hword' : (a :: w ++ r').head?.any isWordStart = true := hword
      rw [if_pos hword', if_pos rfl]
      simp only [List.cons_append, List.tail_cons, run_ahead h Ahead.steady_isWordChar hn] at hw ⊢
      -- a mark is part of the symbol
      have hmark : ∀ {x : Char}, x ∈ sought → x = '?' ∨ x = '!' ∨ x = '=' →
          (((w ++ r').drop (run isWordChar (w ++ r))).head? = some x ↔
            ((w ++ r).drop (run isWordChar (w ++ r))).head? = some x) := by
        intro x hsought hx
        refine h.head?_drop_iff hn hsought fun hr => ?_
        simp only [hr, Option.some_inj, hx, if_true] at hw
        exact Nat.le_of_succ_le_succ hw
      exact if_congr (or_congr (hmark (by simp [sought]) (by simp))
        (or_congr (hmark (by simp [sought]) (by simp)) (hmark (by simp [sought]) (by simp)))) rfl rfl

/-- What stands at the head of a text depends on no more of it than the token takes, as long as the text
behind continues the token no further. Behind a comment it has to end the line if the line ended there,
and behind quoted text without its end it is the whole rest that counts. -/
theorem head_ahead {c : Char} {w : Text} (hw : (head c (w ++ r)).2 ≤ w.length)
    (hstring : c = '"' → Quoted.stringClose (w ++ r) = none → Quoted.stringClose (w ++ r') = none)
    (hopen : c = '\'' ∨ c = ':' → (head c (w ++ r)).1 = none →
      (r = [] → r' = []) ∧ (EndsLine r → EndsLine r'))
    (hline : c = '#' → EndsLine r → EndsLine r') :
    head c (w ++ r') = head c (w ++ r) := by
  refine head_congr ?_ ?_ ?_ ?_ ?_ ?_ (fun hc => ?_) (fun hc => ?_) (fun hc => ?_)
  · rintro rfl
    cases hs : Quoted.stringClose (w ++ r) with
    | none => exact hstring rfl hs
    | some n =>
      rw [head, if_pos rfl, hs] at hw
      exact stringClose_append hs hw r'
  · rintro rfl
    rw [head, if_neg (by decide), if_pos rfl] at hw hopen
    have hextent : extentSize (Quoted.plainExtent '\'' (w ++ r)) ≤ w.length := by
      refine le_trans (Nat.le_of_eq ?_) hw
      cases Quoted.plainExtent '\'' (w ++ r) <;> rfl
    exact plainExtent_congr hextent fun n hn => hopen (.inl rfl) (by rw [hn])
  · rintro rfl
    exact afterColon_ahead h hw (hopen (.inr rfl))
  · rintro rfl
    exact run_congr (fun hzero => run_line_eq_zero.2 (hline rfl (run_line_eq_zero.1 hzero))) hw
  · rintro rfl
    exact afterAt_ahead h hw
  · rintro rfl
    have hrun : run isWordChar (w ++ r) ≤ w.length := by
      refine le_trans ?_ hw
      change _ ≤ (if run isWordChar (w ++ r) = 0 then (none, 0)
        else (some TokenKind.globalVariable, run isWordChar (w ++ r))).2
      split_ifs with hzero
      · exact Nat.le_of_eq hzero
      · exact le_rfl
    exact run_ahead h Ahead.steady_isWordChar hrun
  · rw [head_of_isDigit hc] at hw
    exact number_ahead h hw
  · rw [head_of_isWordStart hc] at hw
    exact word_ahead h hw
  · have hone : (w ++ r).head? = some '>' → (head c (w ++ r)).2 = 1 := by
      intro hr
      obtain ⟨cs, hcs⟩ := List.head?_eq_some_iff.1 hr
      rw [hcs]
      rcases hc with rfl | rfl <;> rfl
    have hiff := h.head?_drop_iff (w := w) (n := 0) (Nat.zero_le _) (x := '>') (by simp [sought])
      fun hr => by
        rw [List.drop_zero] at hr
        rw [hone hr] at hw
        exact hw
    rwa [List.drop_zero, List.drop_zero] at hiff

end

end SchemaLift.Scan
